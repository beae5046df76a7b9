import Mathlib.Data.List.TakeWhile
import RocmFpx.BatchLaws
import RocmFpx.BatchOrder

/-!
How many tokens a call of a splitter returns, from any state of the marks. All the sets of
an equal split stand at one level, the number of tokens taken from each. The loop that
picks the sets breaks only once it holds more than `n_ubatch` of them, so that `n_ubatch + 1`
sets may take a token each.
-/

namespace RocmFpx

def SplitCall.nUbatch : SplitCall → ℕ
  | .simple nUbatch => nUbatch
  | .equal nUbatch _ _ => nUbatch
  | .seq nUbatch => nUbatch

/-- The assertion on the tail holds. -/
def SplitCall.TailFits : SplitCall → Prop
  | .equal nUbatch _ nKeepTail => 0 < nKeepTail → nKeepTail < nUbatch
  | _ => True

namespace BatchAllocr

variable {E : Type*} (b : BatchAllocr E)

/-- Every sequence set of the ubatch contributes the same number of tokens. -/
structure EqualShares (ub : Ubatch E) : Prop where
  nTokens : ub.nTokens = ub.nSeqs * ub.nSeqTokens
  nSeqs : (ub.batchIdxs.map b.seqSetAt).toFinset.card = ub.nSeqs
  share : ∀ i ∈ ub.batchIdxs,
    (ub.batchIdxs.countP fun j => decide (b.seqSetAt j = b.seqSetAt i)) = ub.nSeqTokens

/-- What the compute graph, reserved for `n_ubatch` tokens, relies on. -/
def FitsCall (ub : Ubatch E) : SplitCall → Prop
  | .equal nUbatch _ _ => 1 ≤ ub.nTokens ∧ ub.nTokens ≤ nUbatch ∧ EqualShares b ub
  | .simple nUbatch => 1 ≤ ub.nTokens ∧ ub.nTokens ≤ nUbatch
  | .seq nUbatch => 1 ≤ ub.nTokens ∧ ub.nTokens ≤ nUbatch

/-- All the sequence sets that could take part in an ubatch: those of the unused tokens,
in batch order, that do not overlap an earlier one. -/
def participants (used : Finset ℕ) (sequential : Bool) :
    List ℕ → List (Finset ℕ) → ℤ → List (Finset ℕ)
  | [], sets, _ => sets
  | i :: is, sets, last =>
    let first : ℤ := (b.seqIdAt i).headD 0
    if i ∉ used ∧ sets.all (fun set => decide (set ∩ b.seqSetAt i = ∅)) ∧
        (sequential = true → sets = [] ∨ first = last + 1) then
      participants used sequential is (sets ++ [b.seqSetAt i]) first
    else participants used sequential is sets last

/-- The tokens of a set from its first unused one on. -/
def openTail (used set : Finset ℕ) : List ℕ :=
  (b.seqSetMap set).dropWhile fun i => decide (i ∈ used)

/-- More sequence sets than tokens fit, and none of the first `n_ubatch + 1` has to be put
off for the sake of its tail. -/
def Crowded (used : Finset ℕ) : SplitCall → Prop
  | .equal nUbatch sequential nKeepTail =>
    let sets := b.participants used sequential (List.range b.nTokens) [] (-1)
    (sequential = true → b.hasCpl = false) ∧ nUbatch < sets.length ∧
      (0 < nKeepTail → ∀ set ∈ sets.take (nUbatch + 1),
        (b.openTail used set).length = 1 ∨ nKeepTail < (b.openTail used set).length)
  | _ => False

variable {b}

/-! ## The sets -/

theorem participants_prefix (used : Finset ℕ) (sequential : Bool) (is : List ℕ)
    (sets : List (Finset ℕ)) (last : ℤ) :
    sets <+: b.participants used sequential is sets last := by
  induction is generalizing sets last with
  | nil => exact List.prefix_rfl
  | cons i is ih =>
    rw [participants]
    split_ifs with hadd
    · exact (List.prefix_append _ _).trans (ih _ _)
    · exact ih sets last

/-- The limit cuts the participants off one too late. -/
theorem pickSets_eq_take {used : Finset ℕ} {nUbatch : ℕ} {sequential : Bool} (is : List ℕ)
    {sets : List (Finset ℕ)} (hlen : sets.length ≤ nUbatch) (last : ℤ) :
    b.pickSets used nUbatch sequential is sets last =
      (b.participants used sequential is sets last).take (nUbatch + 1) := by
  induction is generalizing sets last with
  | nil => exact (List.take_of_length_le (show sets.length ≤ nUbatch + 1 by omega)).symm
  | cons i is ih =>
    by_cases hused : i ∈ used
    · rw [pickSets, if_pos hused, participants, if_neg fun h => h.1 hused]
      exact ih hlen last
    rw [pickSets, if_neg hused]
    by_cases hadd : sets.all (fun set => decide (set ∩ b.seqSetAt i = ∅)) ∧
        (sequential = true → sets = [] ∨ ((b.seqIdAt i).headD 0 : ℤ) = last + 1)
    · rw [if_pos hadd, participants, if_pos (And.intro hused hadd)]
      split_ifs with hfull
      · obtain ⟨rest, hrest⟩ := participants_prefix (b := b) used sequential is
          (sets ++ [b.seqSetAt i]) ((b.seqIdAt i).headD 0)
        have hexact : (sets ++ [b.seqSetAt i]).length = nUbatch + 1 := by
          rw [List.length_append, List.length_singleton] at hfull ⊢
          omega
        rw [← hrest, ← hexact, List.take_left]
      · exact ih (by omega) _
    · rw [if_neg hadd, participants, if_neg fun h => hadd h.2]
      exact ih hlen last

theorem pickSets_length_le {used : Finset ℕ} (nUbatch : ℕ) {sequential : Bool} (is : List ℕ)
    (last : ℤ) : (b.pickSets used nUbatch sequential is [] last).length ≤ nUbatch + 1 := by
  rw [pickSets_eq_take is (Nat.zero_le _)]
  exact List.length_take_le _ _

/-! ## The level -/

/-- Of the open tail of its set each cursor has taken the first `t` tokens. -/
structure Level (b : BatchAllocr E) (used : Finset ℕ) (t : ℕ) (cs : List SetCursor) : Prop where
  taken : ∀ c ∈ cs, c.idxs.length = t
  tail : ∀ c ∈ cs, c.idxs ++ c.rest = b.openTail used c.set
  sets : (cs.map SetCursor.set).Nodup

theorem mem_openTail {used set : Finset ℕ} {i : ℕ} (hi : i ∈ b.openTail used set) :
    b.seqSetAt i = set := by
  have hi := (List.dropWhile_sublist _).subset hi
  exact of_decide_eq_true (List.mem_filter.mp hi).2

theorem Level.own {used : Finset ℕ} {t : ℕ} {cs : List SetCursor} (h : Level b used t cs)
    {c : SetCursor} (hc : c ∈ cs) {i : ℕ} (hi : i ∈ c.idxs) : b.seqSetAt i = c.set := by
  refine @mem_openTail _ _ used _ _ ?_
  rw [← h.tail c hc]
  exact List.mem_append_left _ hi

theorem Level.sublist {used : Finset ℕ} {t : ℕ} {cs ds : List SetCursor} (h : Level b used t cs)
    (hsub : ds.Sublist cs) : Level b used t ds where
  taken c hc := h.taken c (hsub.subset hc)
  tail c hc := h.tail c (hsub.subset hc)
  sets := h.sets.sublist (hsub.map _)

theorem Level.start {used : Finset ℕ} {sets : List (Finset ℕ)} (hnd : sets.Nodup) :
    Level b used 0 (sets.map (b.startCursor used)) where
  taken c hc := by
    obtain ⟨set, -, rfl⟩ := List.mem_map.mp hc
    rfl
  tail c hc := by
    obtain ⟨set, -, rfl⟩ := List.mem_map.mp hc
    rfl
  sets := by
    rw [List.map_map]
    exact (List.map_id sets).symm ▸ hnd

theorem Level.advance {used : Finset ℕ} {t : ℕ} {cs cs' : List SetCursor} (h : Level b used t cs)
    (hadv : List.Forall₂ Advanced cs cs') : Level b used (t + 1) cs' where
  taken c' hc' := by
    obtain ⟨c, hc, -, i, -, hidxs⟩ := exists_advanced hadv hc'
    rw [hidxs, List.length_append, h.taken c hc, List.length_singleton]
  tail c' hc' := by
    obtain ⟨c, hc, hset, i, hi, hidxs⟩ := exists_advanced hadv hc'
    rw [hset, hidxs, ← h.tail c hc, hi, List.append_assoc]
    rfl
  sets := map_set_of_advanced hadv ▸ h.sets

theorem Level.length {used : Finset ℕ} {t : ℕ} {cs : List SetCursor} (h : Level b used t cs) :
    (cs.flatMap SetCursor.idxs).length = cs.length * t := by
  rw [List.length_flatMap, List.map_congr_left h.taken, List.map_const', List.sum_replicate,
    smul_eq_mul]

theorem Level.count {used : Finset ℕ} {t : ℕ} {cs : List SetCursor} (h : Level b used t cs)
    {c : SetCursor} (hc : c ∈ cs) :
    ((cs.flatMap SetCursor.idxs).countP fun j => decide (b.seqSetAt j = c.set)) = t := by
  induction cs with
  | nil => exact absurd hc List.not_mem_nil
  | cons d ds ih =>
    obtain ⟨hnew, -⟩ := List.nodup_cons.mp h.sets
    have htail := h.sublist (List.sublist_cons_self d ds)
    rw [List.flatMap_cons, List.countP_append]
    rcases List.mem_cons.mp hc with rfl | hc
    · have hall : (c.idxs.countP fun j => decide (b.seqSetAt j = c.set)) = c.idxs.length :=
        List.countP_eq_length.mpr fun j hj => decide_eq_true (h.own List.mem_cons_self hj)
      have hnone : ((ds.flatMap SetCursor.idxs).countP fun j => decide (b.seqSetAt j = c.set)) = 0 := by
        refine List.countP_eq_zero.mpr fun j hj heq => ?_
        obtain ⟨e, he, hj⟩ := List.mem_flatMap.mp hj
        refine hnew (List.mem_map.mpr ⟨e, he, ?_⟩)
        rw [← htail.own he hj, of_decide_eq_true heq]
      rw [hall, hnone, h.taken c List.mem_cons_self, Nat.add_zero]
    · have hnone : (d.idxs.countP fun j => decide (b.seqSetAt j = c.set)) = 0 := by
        refine List.countP_eq_zero.mpr fun j hj heq => ?_
        refine hnew (List.mem_map.mpr ⟨c, hc, ?_⟩)
        rw [← h.own List.mem_cons_self hj, of_decide_eq_true heq]
      rw [hnone, ih htail hc, Nat.zero_add]

theorem Level.equalShares {used : Finset ℕ} {t : ℕ} {cs : List SetCursor} (h : Level b used t cs)
    (hpos : 0 < t) (hne : cs ≠ []) :
    EqualShares b (b.ubatchAdd (cs.flatMap SetCursor.idxs) cs.length true) := by
  have hshare : (cs.flatMap SetCursor.idxs).length / cs.length = t := by
    rw [h.length, Nat.mul_div_cancel_left t (List.length_pos_iff.mpr hne)]
  have hsets : ((cs.flatMap SetCursor.idxs).map b.seqSetAt).toFinset =
      (cs.map SetCursor.set).toFinset := by
    ext set
    simp only [List.mem_toFinset, List.mem_map, List.mem_flatMap]
    constructor
    · rintro ⟨i, ⟨c, hc, hi⟩, rfl⟩
      exact ⟨c, hc, (h.own hc hi).symm⟩
    · rintro ⟨c, hc, rfl⟩
      have hlen := h.taken c hc
      obtain ⟨i, rest, hidxs⟩ := List.exists_cons_of_length_pos (hlen ▸ hpos)
      have hi : i ∈ c.idxs := hidxs ▸ List.mem_cons_self
      exact ⟨i, ⟨c, hc, hi⟩, h.own hc hi⟩
  refine ⟨?_, ?_, fun i hi => ?_⟩
  · change (cs.flatMap SetCursor.idxs).length =
      cs.length * ((cs.flatMap SetCursor.idxs).length / cs.length)
    rw [hshare, h.length]
  · change ((cs.flatMap SetCursor.idxs).map b.seqSetAt).toFinset.card = cs.length
    rw [hsets, List.toFinset_card_of_nodup h.sets, List.length_map]
  · obtain ⟨c, hc, hi⟩ := List.mem_flatMap.mp hi
    change ((cs.flatMap SetCursor.idxs).countP fun j => decide (b.seqSetAt j = b.seqSetAt i)) =
      (cs.flatMap SetCursor.idxs).length / cs.length
    rw [h.own hc hi, h.count hc, hshare]

/-! ## The expanding loop -/

theorem advanceAll_length {m : Marks} {cs : List SetCursor} (hrest : ∀ c ∈ cs, c.rest ≠ []) :
    (advanceAll m cs).cursors.length = cs.length :=
  (advanceAll_spec m hrest).1.length_eq.symm

theorem expand_level {used : Finset ℕ} {nUbatch fuel t : ℕ} {st : EqualState}
    (h : Level b used t st.cursors) (hne : st.cursors ≠ [])
    (hentry : (t = 0 ∧ ∀ c ∈ st.cursors, c.rest ≠ []) ∨
      (0 < t ∧ st.cursors.length * (t + 1) ≤ nUbatch))
    (hfuel : ∀ c ∈ st.cursors, c.rest.length < fuel) :
    ∃ st' t', expand nUbatch fuel st = some st' ∧ Level b used t' st'.cursors ∧
      st'.cursors.map SetCursor.set = st.cursors.map SetCursor.set ∧ 0 < t' ∧
      (t' = 1 ∨ st'.cursors.length * t' ≤ nUbatch) := by
  induction fuel generalizing st t with
  | zero =>
    obtain ⟨c, cs, hcs⟩ := List.exists_cons_of_ne_nil hne
    exact absurd (hfuel c (hcs ▸ List.mem_cons_self)) (Nat.not_lt_zero _)
  | succ fuel ih =>
    simp only [expand]
    by_cases hstop : (st.cursors.any fun c => c.rest.isEmpty) = true
    · rw [if_pos hstop]
      rcases hentry with ⟨-, hrest⟩ | ⟨hpos, hroom⟩
      · obtain ⟨c, hc, hempty⟩ := List.any_eq_true.mp hstop
        exact absurd (List.isEmpty_iff.mp hempty) (hrest c hc)
      · refine ⟨st, t, rfl, h, rfl, hpos, .inr (le_trans ?_ hroom)⟩
        exact Nat.mul_le_mul_left _ (Nat.le_succ t)
    · rw [if_neg hstop]
      have hrest : ∀ c ∈ st.cursors, c.rest ≠ [] := fun c hc hnil =>
        hstop (List.any_eq_true.mpr ⟨c, hc, List.isEmpty_iff.mpr hnil⟩)
      have hall := (advanceAll_spec st.marks hrest).1
      have hnext := h.advance hall
      have hlen := advanceAll_length (m := st.marks) hrest
      have hne' : (advanceAll st.marks st.cursors).cursors ≠ [] := fun hnil => hne <| by
        rw [hnil] at hlen
        exact List.length_eq_zero_iff.mp hlen.symm
      have htaken : ((advanceAll st.marks st.cursors).cursors.head?.map
          fun c => c.idxs.length).getD 0 = t + 1 := by
        obtain ⟨c, cs, hcs⟩ := List.exists_cons_of_ne_nil hne'
        rw [hcs]
        exact hnext.taken c (hcs ▸ List.mem_cons_self)
      -- the level that is reached fits, or is the first one
      have hfits : t + 1 = 1 ∨
          (advanceAll st.marks st.cursors).cursors.length * (t + 1) ≤ nUbatch := by
        rw [hlen]
        exact hentry.imp (fun h => by omega) fun h => h.2
      rw [htaken]
      split_ifs with hfull
      · exact ⟨_, t + 1, rfl, hnext, map_set_of_advanced hall, Nat.succ_pos t, hfits⟩
      · have hless : ∀ c ∈ (advanceAll st.marks st.cursors).cursors, c.rest.length < fuel := by
          intro c' hc'
          obtain ⟨c, hc, -, i, hi, -⟩ := exists_advanced hall hc'
          have := hfuel c hc
          rw [hi, List.length_cons] at this
          omega
        obtain ⟨st', t', hrun, hlevel, hsets, hrest⟩ := ih hnext hne'
          (.inr ⟨Nat.succ_pos t, by rw [Nat.mul_comm]; omega⟩) hless
        exact ⟨st', t', hrun, hlevel, hsets.trans (map_set_of_advanced hall), hrest⟩

/-! ## The tails -/

theorem popBack_cursor (r : Marks × SetCursor) :
    (popBack r).2.set = r.2.set ∧ (popBack r).2.idxs.length = r.2.idxs.length - 1 ∧
      (popBack r).2.idxs ++ (popBack r).2.rest = r.2.idxs ++ r.2.rest := by
  rcases List.eq_nil_or_concat r.2.idxs with hnil | ⟨l, i, hl⟩
  · simp [popBack, hnil]
  · rw [List.concat_eq_append] at hl
    simp [popBack, hl]

theorem popBack_iterate_cursor (k : ℕ) (r : Marks × SetCursor) :
    (popBack^[k] r).2.set = r.2.set ∧ (popBack^[k] r).2.idxs.length = r.2.idxs.length - k ∧
      (popBack^[k] r).2.idxs ++ (popBack^[k] r).2.rest = r.2.idxs ++ r.2.rest := by
  induction k generalizing r with
  | zero => exact ⟨rfl, rfl, rfl⟩
  | succ k ih =>
    obtain ⟨hset, hlen, htail⟩ := popBack_cursor r
    obtain ⟨hset', hlen', htail'⟩ := ih (popBack r)
    rw [Function.iterate_succ_apply]
    exact ⟨hset'.trans hset, by rw [hlen', hlen]; omega, htail'.trans htail⟩

theorem Level.singleton {used : Finset ℕ} {t t' : ℕ} {c c' : SetCursor} {cs : List SetCursor}
    (h : Level b used t (c :: cs)) (hset : c'.set = c.set) (hlen : c'.idxs.length = t')
    (htail : c'.idxs ++ c'.rest = c.idxs ++ c.rest) : Level b used t' [c'] where
  taken d hd := by
    rw [List.mem_singleton.mp hd, hlen]
  tail d hd := by
    rw [List.mem_singleton.mp hd, htail, hset]
    exact h.tail c List.mem_cons_self
  sets := List.nodup_singleton _

theorem resolveFirst_level {used : Finset ℕ} {nUbatch nKeepTail t : ℕ} {m : Marks} {c : SetCursor}
    {cs : List SetCursor} (h : Level b used t (c :: cs)) (hlt : nKeepTail < nUbatch)
    (hpos : 0 < t) (hroom : t ≤ nUbatch) :
    ∃ t', 0 < t' ∧ t' ≤ nUbatch ∧ Level b used t' [(resolveFirst nUbatch nKeepTail m c).2] := by
  have htaken := h.taken c List.mem_cons_self
  rw [resolveFirst]
  split_ifs with hfits
  · refine ⟨t + c.rest.length, by omega, by omega, h.singleton rfl ?_ ?_⟩
    · exact (List.length_append ..).trans (by rw [htaken])
    · exact List.append_nil _
  · obtain ⟨hset, hlen, htail⟩ := popBack_iterate_cursor (nKeepTail - c.rest.length) (m, c)
    refine ⟨t - (nKeepTail - c.rest.length), by omega, by omega, h.singleton hset ?_ htail⟩
    rw [hlen, htaken]

theorem keepTail_level {used : Finset ℕ} {nUbatch nKeepTail t : ℕ} {st : EqualState}
    (h : Level b used t st.cursors) (hne : st.cursors ≠ []) (hlt : nKeepTail < nUbatch)
    (hpos : 0 < t) (hfits : t = 1 ∨ st.cursors.length * t ≤ nUbatch)
    (hmany : st.cursors.length ≤ nUbatch + 1) :
    ∃ t', 0 < t' ∧ Level b used t' (keepTail nUbatch nKeepTail st).cursors ∧
      (keepTail nUbatch nKeepTail st).cursors ≠ [] ∧
      ((keepTail nUbatch nKeepTail st).cursors.length * t' ≤ nUbatch ↔
        ¬ (nUbatch < st.cursors.length ∧ ∀ c ∈ st.cursors, tailOk nKeepTail c = true)) := by
  obtain ⟨m, cursors⟩ := st
  obtain ⟨c, cs, rfl⟩ := List.exists_cons_of_ne_nil hne
  have hfront := (List.takeWhile_prefix (l := c :: cs) (tailOk nKeepTail)).length_le
  have hlen : (c :: cs).length = cs.length + 1 := rfl
  simp only [BatchAllocr.keepTail] at hfits hmany ⊢
  split_ifs with hzero
  · have hroom : t ≤ nUbatch := by
      rcases hfits with rfl | hfits
      · omega
      · exact (Nat.le_mul_of_pos_left t (Nat.succ_pos cs.length)).trans hfits
    obtain ⟨t', hpos', hroom', hlevel⟩ := resolveFirst_level (m := m) h hlt hpos hroom
    refine ⟨t', hpos', hlevel, List.cons_ne_nil _ _, iff_of_true ?_ fun hall => ?_⟩
    · rw [List.length_singleton, Nat.one_mul]
      exact hroom'
    · rw [List.takeWhile_eq_self_iff.mpr hall.2] at hzero
      exact absurd hzero (Nat.succ_ne_zero _)
  · refine ⟨t, hpos, h.sublist (List.take_sublist _ _), ?_, ?_⟩
    · rw [← List.length_pos_iff, List.length_take]
      omega
    rw [List.length_take, Nat.min_eq_left hfront]
    by_cases hall : ∀ d ∈ c :: cs, tailOk nKeepTail d = true
    · rw [List.takeWhile_eq_self_iff.mpr hall, and_iff_left hall, not_lt]
      refine ⟨(Nat.le_mul_of_pos_right _ hpos).trans, fun hle => ?_⟩
      rcases hfits with rfl | hfits
      · rwa [Nat.mul_one]
      · exact hfits
    · refine iff_of_true ?_ fun h => hall h.2
      have hshort : ((c :: cs).takeWhile (tailOk nKeepTail)).length < (c :: cs).length := by
        refine hfront.lt_of_ne fun heq => hall ?_
        exact List.takeWhile_eq_self_iff.mp ((List.takeWhile_prefix _).eq_of_length heq)
      rcases hfits with rfl | hfits
      · omega
      · exact (Nat.mul_le_mul_right t hshort.le).trans hfits

theorem keepTail_tailOk {nUbatch nKeepTail : ℕ} {st : EqualState} (hlt : nKeepTail < nUbatch) :
    ∀ c ∈ (keepTail nUbatch nKeepTail st).cursors, tailOk nKeepTail c = true := by
  obtain ⟨m, cursors⟩ := st
  cases cursors with
  | nil => simp [keepTail]
  | cons c cs =>
    simp only [keepTail]
    split_ifs with hzero
    · intro d hd
      rw [List.mem_singleton.mp hd, resolveFirst]
      split_ifs with hfits
      · rfl
      · obtain ⟨-, hlen, htail⟩ := popBack_iterate_cursor (nKeepTail - c.rest.length) (m, c)
        have hboth := congrArg List.length htail
        rw [List.length_append, List.length_append, hlen] at hboth
        rw [tailOk, Bool.or_eq_true, decide_eq_true_eq, decide_eq_true_eq]
        simp only at hboth hlen
        omega
    · intro d hd
      rw [← (List.prefix_iff_eq_take.mp (List.takeWhile_prefix (tailOk nKeepTail)))] at hd
      exact List.mem_takeWhile_imp hd

/-! ## One call -/

theorem simpleIdxs_length_le {cur nUbatch : ℕ} (hpos : 0 < nUbatch) :
    (b.simpleIdxs cur nUbatch).length ≤ nUbatch := by
  rw [simpleIdxs, List.length_range']
  omega

theorem seqTake_length_le (nUbatch : ℕ) (is : List ℕ) (cur : Finset ℕ) (m : Marks) {idxs : List ℕ}
    (hlen : idxs.length < nUbatch) : (b.seqTake nUbatch is cur m idxs).2.length ≤ nUbatch := by
  induction is generalizing cur m idxs with
  | nil => exact hlen.le
  | cons i is ih =>
    rw [seqTake]
    split_ifs with hskip hfull
    · exact ih cur m hlen
    · rw [List.length_append, List.length_singleton]
      exact hlen
    · exact ih _ _ (not_le.mp hfull)

theorem splitEqual_level (hinhabited : ∀ i < b.nTokens, b.seqSetAt i ≠ ∅) (st : SplitState)
    {nUbatch nKeepTail : ℕ} {sequential : Bool} (hcpl : (sequential && b.hasCpl) = false)
    (hsets : b.participants st.marks.used sequential (List.range b.nTokens) [] (-1) ≠ [])
    (hkeep : 0 < nKeepTail → nKeepTail < nUbatch) :
    ∃ eq : EqualState, ∃ t, b.splitEqual st nUbatch sequential nKeepTail =
        some (b.emit eq.marks st.outIds (eq.cursors.flatMap SetCursor.idxs) eq.cursors.length true) ∧
      0 < t ∧ Level b st.marks.used t eq.cursors ∧ eq.cursors ≠ [] ∧
      (0 < nKeepTail → ∀ c ∈ eq.cursors, tailOk nKeepTail c = true) ∧
      (eq.cursors.length * t ≤ nUbatch ↔
        ¬ b.Crowded st.marks.used (.equal nUbatch sequential nKeepTail)) := by
  have hcpl' : sequential = true → b.hasCpl = false := by
    rintro rfl
    simpa using hcpl
  have htake : b.pickSets st.marks.used nUbatch sequential (List.range b.nTokens) [] (-1) =
      (b.participants st.marks.used sequential (List.range b.nTokens) [] (-1)).take (nUbatch + 1) :=
    pickSets_eq_take _ (Nat.zero_le _) _
  obtain ⟨-, hdisj, hfrom⟩ := @pickSets_spec _ b st.marks.used nUbatch sequential
    (List.range b.nTokens) _ List.Pairwise.nil (-1)
  have hmany := @pickSets_length_le _ b st.marks.used nUbatch sequential
    (List.range b.nTokens) (-1)
  have hlong : nUbatch < (b.pickSets st.marks.used nUbatch sequential (List.range b.nTokens) []
      (-1)).length ↔ nUbatch < (b.participants st.marks.used sequential (List.range b.nTokens) []
      (-1)).length := by
    rw [htake, List.length_take]
    omega
  have hpick : b.pickSets st.marks.used nUbatch sequential (List.range b.nTokens) [] (-1) ≠ [] := by
    rw [htake, ne_eq, List.take_eq_nil_iff, not_or]
    exact ⟨Nat.succ_ne_zero nUbatch, hsets⟩
  rw [splitEqual, if_neg (by rw [hcpl]; decide), if_neg hpick]
  simp only [Crowded, ← htake, ← hlong, and_iff_right hcpl']
  generalize b.pickSets st.marks.used nUbatch sequential (List.range b.nTokens) [] (-1) = sets at *
  have hpicked := fun set hset => (hfrom set hset).resolve_left List.not_mem_nil
  have hstart : Level b st.marks.used 0 (sets.map (b.startCursor st.marks.used)) :=
    Level.start <| nodup_of_disjoint hdisj fun set hset => by
      obtain ⟨k, hk, -, rfl⟩ := hpicked set hset
      exact hinhabited k (List.mem_range.mp hk)
  have hrest : ∀ c ∈ sets.map (b.startCursor st.marks.used),
      c.rest ≠ [] ∧ c.rest.length < b.nTokens + 1 := by
    intro c hc
    obtain ⟨set, hset, rfl⟩ := List.mem_map.mp hc
    obtain ⟨k, hk, hku, hkset⟩ := hpicked set hset
    constructor
    · rw [startCursor, ne_eq, List.dropWhile_eq_nil_iff]
      refine fun hall => hku (of_decide_eq_true (hall k ?_))
      exact List.mem_filter.mpr ⟨hk, decide_eq_true hkset⟩
    · have hlen : (b.startCursor st.marks.used set).rest.length ≤ (List.range b.nTokens).length :=
        (List.dropWhile_sublist _).length_le.trans (List.length_filter_le _ _)
      rw [List.length_range] at hlen
      omega
  obtain ⟨eq, t, hrun, hlevel, hsame, hpos, hfits⟩ := @expand_level _ _ _ _ _ _ ⟨st.marks, _⟩
    hstart (by simpa using hpick) (.inl ⟨rfl, fun c hc => (hrest c hc).1⟩) fun c hc => (hrest c hc).2
  have hsame : eq.cursors.map SetCursor.set = sets := by
    rw [hsame, List.map_map]
    exact List.map_id _
  have hlen : eq.cursors.length = sets.length := by
    rw [← hsame, List.length_map]
  have hcursors : eq.cursors ≠ [] := by
    rw [← List.length_pos_iff, hlen]
    exact List.length_pos_iff.mpr hpick
  rw [hrun, Option.bind_some]
  by_cases htail : 0 < nKeepTail
  · obtain ⟨t', hpos', hlevel', hne', hexact⟩ :=
      keepTail_level hlevel hcursors (hkeep htail) hpos hfits (hlen ▸ hmany)
    rw [if_pos htail, if_pos (hkeep htail)]
    refine ⟨_, t', rfl, hpos', hlevel', hne', fun _ => keepTail_tailOk (hkeep htail),
      hexact.trans (not_congr ?_)⟩
    rw [hlen]
    refine and_congr_right fun hover => ?_
    have ht : t = 1 := hfits.resolve_right fun hle => by
      have := hle.trans' (Nat.le_mul_of_pos_right eq.cursors.length hpos)
      omega
    have hone : ∀ c ∈ eq.cursors, (tailOk nKeepTail c = true ↔
        (b.openTail st.marks.used c.set).length = 1 ∨
          nKeepTail < (b.openTail st.marks.used c.set).length) := by
      intro c hc
      rw [← hlevel.tail c hc, List.length_append, hlevel.taken c hc, tailOk, Bool.or_eq_true,
        decide_eq_true_eq, decide_eq_true_eq]
      omega
    rw [forall₂_congr hone, ← hsame, List.forall_mem_map]
    exact ⟨fun h _ => h, fun h => h htail⟩
  · rw [if_neg htail]
    refine ⟨eq, t, rfl, hpos, hlevel, hcursors, fun h => absurd h htail, ?_⟩
    rw [hlen, and_iff_left fun h => absurd h htail, not_lt]
    refine ⟨(Nat.le_mul_of_pos_right _ hpos).trans, fun hle => ?_⟩
    rcases hfits with rfl | hfits
    · rwa [Nat.mul_one]
    · exact hlen ▸ hfits

theorem splitEqual_asserts {st : SplitState} {nUbatch nKeepTail : ℕ} {sequential : Bool}
    (hcpl : (sequential && b.hasCpl) = false)
    (hsets : b.participants st.marks.used sequential (List.range b.nTokens) [] (-1) ≠ [])
    {r : SplitState × Ubatch E} (hr : b.splitEqual st nUbatch sequential nKeepTail = some r)
    (htail : 0 < nKeepTail) : nKeepTail < nUbatch := by
  have htake : b.pickSets st.marks.used nUbatch sequential (List.range b.nTokens) [] (-1) ≠ [] := by
    rw [pickSets_eq_take _ (Nat.zero_le _), ne_eq, List.take_eq_nil_iff, not_or]
    exact ⟨Nat.succ_ne_zero nUbatch, hsets⟩
  by_contra hshort
  rw [splitEqual, if_neg (by rw [hcpl]; decide), if_neg htake, Option.bind_eq_some_iff] at hr
  obtain ⟨eq, -, hr⟩ := hr
  rw [if_pos htail, if_neg hshort] at hr
  exact absurd hr (Option.some_ne_none r).symm

theorem splitEqual_idle {st : SplitState} {nUbatch nKeepTail : ℕ} {sequential : Bool}
    (h : (sequential && b.hasCpl) = true ∨
      b.participants st.marks.used sequential (List.range b.nTokens) [] (-1) = []) :
    b.splitEqual st nUbatch sequential nKeepTail = some (st, Ubatch.empty) ∧
      ¬ b.Crowded st.marks.used (.equal nUbatch sequential nKeepTail) := by
  by_cases hcpl : (sequential && b.hasCpl) = true
  · rw [splitEqual, if_pos hcpl]
    rw [Bool.and_eq_true] at hcpl
    refine ⟨rfl, fun hcrowded => ?_⟩
    have := hcrowded.1 hcpl.1
    exact absurd (this.symm.trans hcpl.2) Bool.false_ne_true
  · have hnil := h.resolve_left hcpl
    have hpick : b.pickSets st.marks.used nUbatch sequential (List.range b.nTokens) [] (-1) = [] := by
      rw [pickSets_eq_take _ (Nat.zero_le _), hnil, List.take_nil]
    rw [splitEqual, if_neg hcpl, if_pos hpick]
    refine ⟨rfl, fun hcrowded => ?_⟩
    have := hcrowded.2.1
    rw [hnil] at this
    exact absurd this (Nat.not_lt_zero _)

section

variable [Zero E] {inp : BatchExt E} {nPosPerEmbd : ℕ} {allowMixed outputAll : Bool}

/-- A call aborts at most for its tail, and what it returns fits precisely when the sets
are not crowded. -/
theorem split_fits_iff (hinit : init nPosPerEmbd allowMixed inp outputAll = some b)
    (st : SplitState) {call : SplitCall} (hpos : 0 < call.nUbatch) :
    (call.TailFits → ∃ r, b.split st call = some r) ∧
      ∀ r, b.split st call = some r →
        ((r.2.nTokens ≠ 0 → b.FitsCall r.2 call) ↔ ¬ b.Crowded st.marks.used call) := by
  have hinhabited := fun i hi => (init_prepared hinit).seqSetAt_ne (i := i) hi
  cases call with
  | simple nUbatch =>
    refine ⟨fun _ => ⟨_, rfl⟩, fun r hr => iff_of_true (fun hne => ?_) id⟩
    obtain rfl := Option.some.inj hr
    refine ⟨Nat.one_le_iff_ne_zero.mpr hne, ?_⟩
    rw [splitSimple]
    cases b.firstUnused st.marks.used with
    | none => exact Nat.zero_le _
    | some cur => exact simpleIdxs_length_le hpos
  | seq nUbatch =>
    refine ⟨fun _ => ⟨_, rfl⟩, fun r hr => iff_of_true (fun hne => ?_) id⟩
    obtain rfl := Option.some.inj hr
    refine ⟨Nat.one_le_iff_ne_zero.mpr hne, ?_⟩
    rw [splitSeq]
    cases b.firstUnused st.marks.used with
    | none => exact Nat.zero_le _
    | some cur => exact seqTake_length_le nUbatch _ _ _ hpos
  | equal nUbatch sequential nKeepTail =>
    by_cases hidle : (sequential && b.hasCpl) = true ∨
        b.participants st.marks.used sequential (List.range b.nTokens) [] (-1) = []
    · obtain ⟨hrun, hcalm⟩ := @splitEqual_idle _ _ _ nUbatch nKeepTail _ hidle
      refine ⟨fun _ => ⟨_, hrun⟩, fun r hr => iff_of_true (fun hne => ?_) hcalm⟩
      obtain rfl := Option.some.inj (hrun.symm.trans hr)
      exact absurd rfl hne
    · rw [not_or, Bool.not_eq_true] at hidle
      obtain ⟨hcpl, hsets⟩ := hidle
      refine ⟨fun hkeep => ?_, fun r hr => ?_⟩
      · obtain ⟨eq, t, hrun, -⟩ := splitEqual_level hinhabited st hcpl hsets hkeep
        exact ⟨_, hrun⟩
      · obtain ⟨eq, t, hrun, htpos, hlevel, hne, -, hexact⟩ :=
          splitEqual_level hinhabited st hcpl hsets (splitEqual_asserts hcpl hsets hr)
        obtain rfl := Option.some.inj (hrun.symm.trans hr)
        have hlen : (b.emit eq.marks st.outIds (eq.cursors.flatMap SetCursor.idxs)
            eq.cursors.length true).2.nTokens = eq.cursors.length * t := hlevel.length
        have hpos' : 0 < eq.cursors.length * t :=
          Nat.mul_pos (List.length_pos_iff.mpr hne) htpos
        rw [← hexact, hlen]
        constructor
        · intro h
          have hfits := (h hpos'.ne').2.1
          rwa [hlen] at hfits
        · exact fun h _ => ⟨hlen ▸ hpos', hlen ▸ h, hlevel.equalShares htpos hne⟩

end

/-! ## Two sequences of one token -/

def twoSingles : BatchExt ℤ where
  nEmbdInp := 1
  nEmbdState := 0
  nSeqMax := 2
  mem := none
  nVocab := 10
  nEmbd := 0
  tokens := [wordToken [0] 0 zero_ne zero_nodup, wordToken [1] 0 one_ne one_nodup]
  embd := []
  state := []
  embd_length := meetingAgain.embd_length
  embd_fits := by decide

def singlesBatch : BatchAllocr ℤ := (init 1 false twoSingles false).get (by decide)

theorem init_twoSingles : init 1 false twoSingles false = some singlesBatch :=
  (Option.some_get _).symm

/-- An equal split into ubatches of one token returns two. -/
theorem splitEqual_overfull : ¬ ∀ (inp : BatchExt ℤ) (b : BatchAllocr ℤ) (call : SplitCall)
    (r : SplitState × Ubatch ℤ), init 1 false inp false = some b → 0 < call.nUbatch →
    b.split splitReset call = some r → r.2.nTokens ≠ 0 → b.FitsCall r.2 call := by
  intro hall
  have hread : (singlesBatch.split splitReset (.equal 1 false 0)).map (fun r => r.2.nTokens) =
      some 2 := rfl
  obtain ⟨r, hrun, htwo⟩ := Option.map_eq_some_iff.mp hread
  have hfits := hall twoSingles singlesBatch (.equal 1 false 0) r init_twoSingles one_pos hrun
    (by rw [htwo]; decide)
  exact absurd hfits.2.1 (by rw [htwo]; decide)

/-- With room for both. -/
theorem split_fits_singles :
    (SplitCall.TailFits (.equal 2 false 1) →
      ∃ r, singlesBatch.split splitReset (.equal 2 false 1) = some r) ∧
      ∀ r, singlesBatch.split splitReset (.equal 2 false 1) = some r →
        ((r.2.nTokens ≠ 0 → singlesBatch.FitsCall r.2 (.equal 2 false 1)) ↔
          ¬ singlesBatch.Crowded splitReset.marks.used (.equal 2 false 1)) :=
  split_fits_iff init_twoSingles splitReset two_pos

end BatchAllocr
end RocmFpx
