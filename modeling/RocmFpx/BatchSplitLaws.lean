import RocmFpx.BatchSplit

/-!
What one call of a splitter does. The invariant behind all three is `SetPrefix`: of the
tokens with one sequence set the used ones come first. A call then draws fresh indices, at
least one as long as some are left, and keeps the invariant.
-/

namespace RocmFpx

theorem Marks.foldl_set (m : Marks) (is : List ℕ) :
    is.foldl Marks.set m = ⟨m.used ∪ is.toFinset, m.nUsed + is.length⟩ := by
  induction is generalizing m with
  | nil => simp
  | cons i is ih =>
    rw [List.foldl_cons, ih, Marks.set, List.toFinset_cons, List.length_cons]
    congr 1
    · rw [Finset.insert_union, Finset.union_insert]
    · exact Nat.add_right_comm m.nUsed 1 is.length

theorem Marks.foldl_unset (m : Marks) (is : List ℕ) :
    is.foldl Marks.unset m = ⟨m.used \ is.toFinset, m.nUsed - is.length⟩ := by
  induction is generalizing m with
  | nil => simp
  | cons i is ih =>
    rw [List.foldl_cons, ih, Marks.unset, List.toFinset_cons, List.length_cons]
    congr 1
    · rw [Finset.sdiff_insert, Finset.erase_sdiff_comm]
    · rw [Nat.sub_sub, Nat.add_comm]

theorem Marks.foldl_set_perm {is js : List ℕ} (h : is.Perm js) (m : Marks) :
    is.foldl Marks.set m = js.foldl Marks.set m := by
  rw [foldl_set, foldl_set, List.toFinset_eq_of_perm _ _ h, h.length_eq]

theorem Marks.foldl_unset_set {m : Marks} {is js : List ℕ} (hnd : (is ++ js).Nodup)
    (hfresh : ∀ j ∈ js, j ∉ m.used) :
    js.foldl Marks.unset ((is ++ js).foldl Marks.set m) = is.foldl Marks.set m := by
  rw [foldl_set, foldl_unset, foldl_set]
  congr 1
  · ext i
    simp only [Finset.mem_sdiff, Finset.mem_union, List.mem_toFinset, List.mem_append]
    constructor
    · tauto
    · rintro (hi | hi)
      · exact ⟨.inl hi, fun hj => hfresh i hj hi⟩
      · exact ⟨.inr (.inl hi), fun hj => List.disjoint_of_nodup_append hnd hi hj⟩
  · rw [List.length_append]
    change m.nUsed + (is.length + js.length) - js.length = _
    omega

namespace BatchAllocr

variable {E : Type*} {b : BatchAllocr E}

/-- Of the tokens with one sequence set the used ones come first. -/
def SetPrefix (b : BatchAllocr E) (used : Finset ℕ) : Prop :=
  ∀ i j, i < j → j ∈ used → b.seqSetAt i = b.seqSetAt j → i ∈ used

/-- The marks after fresh indices `idxs` were taken. -/
structure Draw (b : BatchAllocr E) (m m' : Marks) (idxs : List ℕ) : Prop where
  nodup : idxs.Nodup
  fresh : ∀ i ∈ idxs, i < b.nTokens ∧ i ∉ m.used
  marks : m' = ⟨m.used ∪ idxs.toFinset, m.nUsed + idxs.length⟩
  setPrefix : SetPrefix b m'.used

theorem firstUnused_eq_none (used : Finset ℕ) :
    b.firstUnused used = none ↔ ∀ i < b.nTokens, i ∈ used := by
  simp [firstUnused]

theorem firstUnused_some {used : Finset ℕ} {cur : ℕ} (h : b.firstUnused used = some cur) :
    cur < b.nTokens ∧ cur ∉ used ∧ ∀ i < cur, i ∈ used := by
  have hcur := List.find?_some h
  have hmem := List.mem_of_find?_eq_some h
  rw [List.mem_range] at hmem
  refine ⟨hmem, by simpa using hcur, fun i hi => ?_⟩
  rw [firstUnused, List.find?_eq_some_iff_getElem] at h
  obtain ⟨-, k, hk, hget, hbefore⟩ := h
  rw [List.getElem_range] at hget
  subst hget
  simpa using hbefore i hi

/-! ## Simple splits -/

theorem mem_simpleIdxs {cur nUbatch i : ℕ} :
    i ∈ b.simpleIdxs cur nUbatch ↔ cur ≤ i ∧ i < cur + min (max nUbatch 1) (b.nTokens - cur) := by
  rw [simpleIdxs, List.mem_range'_1]

theorem simple_draw {m : Marks} {cur nUbatch : ℕ} (hcur : b.firstUnused m.used = some cur)
    (hwindow : ∀ i ∈ b.simpleIdxs cur nUbatch, i ∉ m.used) (hpre : SetPrefix b m.used) :
    Draw b m ((b.simpleIdxs cur nUbatch).foldl Marks.set m) (b.simpleIdxs cur nUbatch) where
  nodup := by
    rw [simpleIdxs]
    exact List.nodup_range' _ one_pos
  fresh i hi := by
    have := mem_simpleIdxs.1 hi
    exact ⟨by omega, hwindow i hi⟩
  marks := Marks.foldl_set m _
  setPrefix := by
    obtain ⟨-, -, hbefore⟩ := firstUnused_some hcur
    rw [Marks.foldl_set]
    intro i j hij hj hset
    simp only [Finset.mem_union, List.mem_toFinset, mem_simpleIdxs] at hj ⊢
    rcases hj with hj | hj
    · exact .inl (hpre i j hij hj hset)
    · by_cases hi : i < cur
      · exact .inl (hbefore i hi)
      · exact .inr (by omega)

theorem simpleIdxs_ne_nil {used : Finset ℕ} {cur nUbatch : ℕ}
    (hcur : b.firstUnused used = some cur) : b.simpleIdxs cur nUbatch ≠ [] := by
  have hlt := (firstUnused_some hcur).1
  exact List.ne_nil_of_mem (mem_simpleIdxs.2 ⟨le_rfl, by omega⟩)

/-! ## Splits by sequence -/

/-- What the loop takes from `is`: unused indices in order, with sets below `cur`, and of
each set the unused ones up to a last one. -/
structure SeqTaken (b : BatchAllocr E) (is : List ℕ) (cur : Finset ℕ) (used : Finset ℕ)
    (new : List ℕ) : Prop where
  sub : new.Sublist is
  fresh : ∀ i ∈ new, i ∉ used
  below : ∀ i ∈ new, b.seqSetAt i ⊆ cur
  initial : ∀ j ∈ new, ∀ i ∈ is, i < j → b.seqSetAt i = b.seqSetAt j → i ∈ used ∨ i ∈ new

theorem SeqTaken.skip {is : List ℕ} {cur used : Finset ℕ} {new : List ℕ} {i : ℕ}
    (h : SeqTaken b is cur used new) (hskip : i ∈ used ∨ cur ∩ b.seqSetAt i ≠ b.seqSetAt i) :
    SeqTaken b (i :: is) cur used new where
  sub := h.sub.cons i
  fresh := h.fresh
  below := h.below
  initial j hj k hk hkj hset := by
    rcases List.mem_cons.mp hk with rfl | hk
    · rcases hskip with hused | hnot
      · exact .inl hused
      · exact absurd (Finset.inter_eq_right.mpr (hset ▸ h.below j hj)) hnot
    · exact h.initial j hj k hk hkj hset

theorem SeqTaken.push {is : List ℕ} {cur used : Finset ℕ} {new : List ℕ} {i : ℕ}
    (h : SeqTaken b is (b.seqSetAt i) (insert i used) new) (hi : i ∉ used)
    (hbelow : cur ∩ b.seqSetAt i = b.seqSetAt i) (hsorted : ∀ k ∈ is, i < k) :
    SeqTaken b (i :: is) cur used (i :: new) where
  sub := h.sub.cons_cons i
  fresh j hj := by
    rcases List.mem_cons.mp hj with rfl | hj
    · exact hi
    · exact fun hused => h.fresh j hj (Finset.mem_insert_of_mem hused)
  below j hj := by
    have hsub := Finset.inter_eq_right.mp hbelow
    rcases List.mem_cons.mp hj with rfl | hj
    · exact hsub
    · exact (h.below j hj).trans hsub
  initial j hj k hk hkj hset := by
    rw [List.mem_cons] at hj hk
    rcases hk with rfl | hk
    · exact .inr List.mem_cons_self
    rcases hj with rfl | hj
    · have := hsorted k hk
      omega
    · rcases h.initial j hj k hk hkj hset with hin | hin
      · rcases Finset.mem_insert.mp hin with rfl | hin
        · exact .inr List.mem_cons_self
        · exact .inl hin
      · exact .inr (List.mem_cons_of_mem i hin)

theorem SeqTaken.nil (is : List ℕ) (cur used : Finset ℕ) : SeqTaken b is cur used [] :=
  ⟨List.nil_sublist is, by simp, by simp, by simp⟩

theorem seqTake_spec (nUbatch : ℕ) {is : List ℕ} (hsorted : is.Pairwise (· < ·)) (cur : Finset ℕ)
    (m : Marks) (idxs : List ℕ) : ∃ new, SeqTaken b is cur m.used new ∧
      b.seqTake nUbatch is cur m idxs = (new.foldl Marks.set m, idxs ++ new) := by
  induction is generalizing cur m idxs with
  | nil => exact ⟨[], .nil [] cur m.used, by simp [seqTake]⟩
  | cons i is ih =>
    rw [List.pairwise_cons] at hsorted
    rw [seqTake]
    split_ifs with hskip hfull
    · obtain ⟨new, htaken, heq⟩ := ih hsorted.2 cur m idxs
      exact ⟨new, htaken.skip hskip, heq⟩
    · rw [not_or, not_not] at hskip
      exact ⟨[i], (SeqTaken.nil is _ _).push hskip.1 hskip.2 hsorted.1, rfl⟩
    · rw [not_or, not_not] at hskip
      obtain ⟨new, htaken, heq⟩ := ih hsorted.2 (b.seqSetAt i) (m.set i) (idxs ++ [i])
      refine ⟨i :: new, htaken.push hskip.1 hskip.2 hsorted.1, ?_⟩
      rw [heq, List.append_assoc]
      rfl

theorem seqTake_first (nUbatch : ℕ) {cur : ℕ} {m : Marks} (hcur : b.firstUnused m.used = some cur) :
    cur ∈ (b.seqTake nUbatch (List.range' cur (b.nTokens - cur)) (b.seqSetAt cur) m []).2 := by
  obtain ⟨hlt, hunused, -⟩ := firstUnused_some hcur
  obtain ⟨n, hn⟩ : ∃ n, b.nTokens - cur = n + 1 := ⟨b.nTokens - cur - 1, by omega⟩
  have hsorted : (List.range' (cur + 1) n).Pairwise (· < ·) := List.pairwise_lt_range'
  rw [hn, List.range'_succ, seqTake, if_neg (by simp [hunused])]
  split_ifs with hfull
  · simp
  · obtain ⟨new, -, heq⟩ := seqTake_spec (b := b) nUbatch hsorted (b.seqSetAt cur) (m.set cur)
      ([] ++ [cur])
    rw [heq]
    simp

theorem seq_draw {m : Marks} {cur : ℕ} (nUbatch : ℕ) (hcur : b.firstUnused m.used = some cur)
    (hpre : SetPrefix b m.used) :
    Draw b m (b.seqTake nUbatch (List.range' cur (b.nTokens - cur)) (b.seqSetAt cur) m []).1
      (b.seqTake nUbatch (List.range' cur (b.nTokens - cur)) (b.seqSetAt cur) m []).2 := by
  obtain ⟨hlt, -, hbefore⟩ := firstUnused_some hcur
  obtain ⟨new, htaken, heq⟩ := seqTake_spec (b := b) nUbatch
    (List.pairwise_lt_range' (s := cur) (n := b.nTokens - cur)) (b.seqSetAt cur) m []
  rw [heq, List.nil_append]
  have hmem : ∀ i ∈ new, cur ≤ i ∧ i < b.nTokens := by
    intro i hi
    have := List.mem_range'_1.mp (htaken.sub.subset hi)
    omega
  refine ⟨htaken.sub.nodup (List.nodup_range' _ one_pos),
    fun i hi => ⟨(hmem i hi).2, htaken.fresh i hi⟩, Marks.foldl_set m new, ?_⟩
  rw [Marks.foldl_set]
  intro i j hij hj hset
  simp only [Finset.mem_union, List.mem_toFinset] at hj ⊢
  rcases hj with hj | hj
  · exact .inl (hpre i j hij hj hset)
  · by_cases hi : i < cur
    · exact .inl (hbefore i hi)
    · have := hmem j hj
      exact htaken.initial j hj i (List.mem_range'_1.mpr (by omega)) hij hset

/-! ## Equal splits: the sequence sets -/

theorem disjoint_push {sets : List (Finset ℕ)} (hsets : sets.Pairwise fun s t => s ∩ t = ∅)
    {set : Finset ℕ} (hall : sets.all (fun s => decide (s ∩ set = ∅)) = true) :
    (sets ++ [set]).Pairwise fun s t => s ∩ t = ∅ := by
  refine List.pairwise_append.mpr ⟨hsets, List.pairwise_singleton _ _, fun s hs t ht => ?_⟩
  rw [List.mem_singleton.mp ht]
  exact of_decide_eq_true (List.all_eq_true.mp hall s hs)

theorem pickSets_spec {used : Finset ℕ} {nUbatch : ℕ} {sequential : Bool} (is : List ℕ)
    {sets : List (Finset ℕ)} (hsets : sets.Pairwise fun s t => s ∩ t = ∅) (last : ℤ) :
    sets <+: b.pickSets used nUbatch sequential is sets last ∧
    (b.pickSets used nUbatch sequential is sets last).Pairwise (fun s t => s ∩ t = ∅) ∧
    ∀ set ∈ b.pickSets used nUbatch sequential is sets last,
      set ∈ sets ∨ ∃ i ∈ is, i ∉ used ∧ b.seqSetAt i = set := by
  induction is generalizing sets last with
  | nil => exact ⟨List.prefix_rfl, hsets, fun set hset => .inl hset⟩
  | cons i is ih =>
    have later : ∀ {set : Finset ℕ}, (∃ k ∈ is, k ∉ used ∧ b.seqSetAt k = set) →
        ∃ k ∈ i :: is, k ∉ used ∧ b.seqSetAt k = set :=
      fun ⟨k, hk, hkeep⟩ => ⟨k, List.mem_cons_of_mem i hk, hkeep⟩
    obtain ⟨hskip₁, hskip₂, hskip₃⟩ := ih hsets last
    rw [pickSets]
    split_ifs with hused hadd hfull
    · exact ⟨hskip₁, hskip₂, fun set hset => (hskip₃ set hset).imp_right later⟩
    · refine ⟨List.prefix_append _ _, disjoint_push hsets hadd.1, fun set hset => ?_⟩
      rcases List.mem_append.mp hset with hset | hset
      · exact .inl hset
      · exact .inr ⟨i, List.mem_cons_self, hused, (List.mem_singleton.mp hset).symm⟩
    · obtain ⟨hpre, hpair, hfrom⟩ := ih (disjoint_push hsets hadd.1) ((b.seqIdAt i).headD 0)
      refine ⟨(List.prefix_append _ _).trans hpre, hpair, fun set hset => ?_⟩
      rcases hfrom set hset with hset | hset
      · rcases List.mem_append.mp hset with hset | hset
        · exact .inl hset
        · exact .inr ⟨i, List.mem_cons_self, hused, (List.mem_singleton.mp hset).symm⟩
      · exact .inr (later hset)
    · exact ⟨hskip₁, hskip₂, fun set hset => (hskip₃ set hset).imp_right later⟩

theorem pickSets_ne_nil {used : Finset ℕ} {nUbatch : ℕ} {sequential : Bool} {is : List ℕ}
    (hsome : ∃ i ∈ is, i ∉ used) (last : ℤ) :
    b.pickSets used nUbatch sequential is [] last ≠ [] := by
  induction is with
  | nil => simp at hsome
  | cons i is ih =>
    rw [pickSets]
    split_ifs with hused hadd hfull
    · obtain ⟨k, hk, hkeep⟩ := hsome
      rcases List.mem_cons.mp hk with rfl | hk
      · exact absurd hused hkeep
      · exact ih ⟨k, hk, hkeep⟩
    · simp
    · have hpre : [b.seqSetAt i] <+: b.pickSets used nUbatch sequential is [b.seqSetAt i] _ :=
        (pickSets_spec is (List.pairwise_singleton _ _) ((b.seqIdAt i).headD 0)).1
      exact fun hnil => List.cons_ne_nil _ _ (List.prefix_nil.mp (hnil ▸ hpre))
    · simp at hadd

theorem pickSets_eq_nil {used : Finset ℕ} {nUbatch : ℕ} {sequential : Bool} {is : List ℕ}
    (hall : ∀ i ∈ is, i ∈ used) (last : ℤ) :
    b.pickSets used nUbatch sequential is [] last = [] := by
  induction is with
  | nil => rfl
  | cons i is ih =>
    rw [pickSets, if_pos (hall i List.mem_cons_self)]
    exact ih fun k hk => hall k (List.mem_cons_of_mem i hk)

/-! ## Equal splits: the cursors -/

def unusedOf (b : BatchAllocr E) (used set : Finset ℕ) : List ℕ :=
  (b.seqSetMap set).filter fun i => decide (i ∉ used)

theorem mem_unusedOf {used set : Finset ℕ} {i : ℕ} :
    i ∈ b.unusedOf used set ↔ i < b.nTokens ∧ b.seqSetAt i = set ∧ i ∉ used := by
  rw [unusedOf, seqSetMap, List.mem_filter, List.mem_filter, List.mem_range, decide_eq_true_eq,
    decide_eq_true_eq, and_assoc]

theorem unusedOf_sorted (used set : Finset ℕ) : (b.unusedOf used set).Pairwise (· < ·) :=
  (List.pairwise_lt_range.filter _).filter _

theorem unusedOf_nodup (used set : Finset ℕ) : (b.unusedOf used set).Nodup :=
  (unusedOf_sorted used set).imp fun h => h.ne

/-- What a cursor has taken and what it has left are the unused tokens of its set. -/
structure EqualInv (b : BatchAllocr E) (m₀ : Marks) (st : EqualState) : Prop where
  cursor : ∀ c ∈ st.cursors, c.idxs ++ c.rest = b.unusedOf m₀.used c.set
  sets : (st.cursors.map SetCursor.set).Nodup
  marks : st.marks = (st.cursors.flatMap SetCursor.idxs).foldl Marks.set m₀

/-- Under `SetPrefix` skipping the used tokens in front skips all of them. -/
theorem startCursor_rest {used : Finset ℕ} (hpre : SetPrefix b used) (set : Finset ℕ) :
    (b.startCursor used set).rest = b.unusedOf used set := by
  have hdrop : ∀ l : List ℕ, l.Pairwise (fun i j => i < j ∧ b.seqSetAt i = b.seqSetAt j) →
      l.dropWhile (fun i => decide (i ∈ used)) = l.filter fun i => decide (i ∉ used) := by
    intro l hl
    induction l with
    | nil => rfl
    | cons i l ih =>
      rw [List.pairwise_cons] at hl
      by_cases hi : i ∈ used
      · rw [List.dropWhile_cons_of_pos (by simpa using hi), List.filter_cons_of_neg (by simpa using hi),
          ih hl.2]
      · rw [List.dropWhile_cons_of_neg (by simpa using hi), List.filter_cons_of_pos (by simpa using hi)]
        congr 1
        refine (List.filter_eq_self.mpr fun j hj => ?_).symm
        exact decide_eq_true fun hused => hi (hpre i j (hl.1 j hj).1 hused (hl.1 j hj).2)
  refine hdrop _ ?_
  rw [seqSetMap, List.pairwise_filter]
  refine List.pairwise_lt_range.imp fun hij hi hj => ⟨hij, ?_⟩
  rw [of_decide_eq_true hi, of_decide_eq_true hj]

theorem EqualInv.start {m : Marks} (hpre : SetPrefix b m.used) {sets : List (Finset ℕ)}
    (hnd : sets.Nodup) : EqualInv b m ⟨m, sets.map (b.startCursor m.used)⟩ where
  cursor c hc := by
    obtain ⟨set, -, rfl⟩ := List.mem_map.mp hc
    exact startCursor_rest hpre set
  sets := by
    rw [List.map_map]
    exact (List.map_id sets).symm ▸ hnd
  marks := by
    have hnil : (sets.map (b.startCursor m.used)).flatMap SetCursor.idxs = [] := by
      simp [startCursor]
    rw [hnil]
    rfl

theorem EqualInv.idxs_sub {m₀ : Marks} {st : EqualState} (h : EqualInv b m₀ st) {c : SetCursor}
    (hc : c ∈ st.cursors) {i : ℕ} (hi : i ∈ c.idxs) :
    i < b.nTokens ∧ b.seqSetAt i = c.set ∧ i ∉ m₀.used := by
  rw [← mem_unusedOf, ← h.cursor c hc]
  exact List.mem_append_left _ hi

theorem EqualInv.nodup {m₀ : Marks} {st : EqualState} (h : EqualInv b m₀ st) :
    (st.cursors.flatMap SetCursor.idxs).Nodup := by
  rw [List.nodup_flatMap]
  constructor
  · intro c hc
    have hnd := unusedOf_nodup (b := b) m₀.used c.set
    rw [← h.cursor c hc] at hnd
    exact (List.nodup_append.mp hnd).1
  · refine (List.pairwise_map.mp h.sets).imp_of_mem fun hc hd hne i hi hj => hne ?_
    rw [← (h.idxs_sub hc hi).2.1, (h.idxs_sub hd hj).2.1]

theorem EqualInv.draw {m₀ : Marks} {st : EqualState} (h : EqualInv b m₀ st)
    (hpre : SetPrefix b m₀.used) : Draw b m₀ st.marks (st.cursors.flatMap SetCursor.idxs) where
  nodup := h.nodup
  fresh i hi := by
    obtain ⟨c, hc, hi⟩ := List.mem_flatMap.mp hi
    exact ⟨(h.idxs_sub hc hi).1, (h.idxs_sub hc hi).2.2⟩
  marks := by rw [h.marks, Marks.foldl_set]
  setPrefix := by
    rw [h.marks, Marks.foldl_set]
    intro i j hij hj hset
    simp only [Finset.mem_union, List.mem_toFinset] at hj ⊢
    rcases hj with hj | hj
    · exact .inl (hpre i j hij hj hset)
    obtain ⟨c, hc, hj⟩ := List.mem_flatMap.mp hj
    by_cases hi : i ∈ m₀.used
    · exact .inl hi
    right
    obtain ⟨hlt, hsetj, -⟩ := h.idxs_sub hc hj
    have hmem : i ∈ c.idxs ++ c.rest := by
      rw [h.cursor c hc, mem_unusedOf]
      exact ⟨by omega, hset.trans hsetj, hi⟩
    have hsorted := unusedOf_sorted (b := b) m₀.used c.set
    rw [← h.cursor c hc, List.pairwise_append] at hsorted
    rcases List.mem_append.mp hmem with hmem | hmem
    · exact List.mem_flatMap.mpr ⟨c, hc, hmem⟩
    · have := hsorted.2.2 j hj i hmem
      omega

/-! ## Equal splits: the expanding loop -/

/-- A cursor before and after it took one more token. -/
def Advanced (c c' : SetCursor) : Prop :=
  c'.set = c.set ∧ ∃ i, c.rest = i :: c'.rest ∧ c'.idxs = c.idxs ++ [i]

theorem advanceAll_spec (m : Marks) {cs : List SetCursor} (hrest : ∀ c ∈ cs, c.rest ≠ []) :
    List.Forall₂ Advanced cs (advanceAll m cs).cursors ∧
    ∃ heads, (advanceAll m cs).marks = heads.foldl Marks.set m ∧
      ((advanceAll m cs).cursors.flatMap SetCursor.idxs).Perm
        (cs.flatMap SetCursor.idxs ++ heads) := by
  induction cs generalizing m with
  | nil => exact ⟨.nil, [], rfl, .rfl⟩
  | cons c cs ih =>
    obtain ⟨i, rest, hi⟩ := List.exists_cons_of_ne_nil (hrest c List.mem_cons_self)
    obtain ⟨hall, heads, hmarks, hperm⟩ := ih (m.set i) fun d hd => hrest d (List.mem_cons_of_mem c hd)
    simp only [advanceAll, hi]
    refine ⟨.cons ⟨rfl, i, hi, rfl⟩ hall, i :: heads, hmarks, ?_⟩
    rw [List.flatMap_cons, List.flatMap_cons, List.append_assoc, List.append_assoc]
    refine List.Perm.append_left c.idxs ?_
    exact (hperm.cons i).trans List.perm_middle.symm

theorem map_set_of_advanced {cs cs' : List SetCursor} (h : List.Forall₂ Advanced cs cs') :
    cs'.map SetCursor.set = cs.map SetCursor.set := by
  induction h with
  | nil => rfl
  | cons hc _ ih => rw [List.map_cons, List.map_cons, hc.1, ih]

theorem exists_advanced {cs cs' : List SetCursor} (h : List.Forall₂ Advanced cs cs') {c' : SetCursor}
    (hc' : c' ∈ cs') : ∃ c ∈ cs, Advanced c c' := by
  induction h with
  | nil => exact absurd hc' List.not_mem_nil
  | @cons c d cs ds hc _ ih =>
    rcases List.mem_cons.mp hc' with rfl | hmem
    · exact ⟨c, List.mem_cons_self, hc⟩
    · obtain ⟨e, he, hadv⟩ := ih hmem
      exact ⟨e, List.mem_cons_of_mem c he, hadv⟩

theorem EqualInv.advance {m₀ : Marks} {st : EqualState} (h : EqualInv b m₀ st)
    (hrest : ∀ c ∈ st.cursors, c.rest ≠ []) : EqualInv b m₀ (advanceAll st.marks st.cursors) := by
  obtain ⟨hall, heads, hmarks, hperm⟩ := advanceAll_spec st.marks hrest
  refine ⟨fun c' hc' => ?_, map_set_of_advanced hall ▸ h.sets, ?_⟩
  · obtain ⟨c, hc, hset, i, hi, hidxs⟩ := exists_advanced hall hc'
    rw [hset, hidxs, ← h.cursor c hc, hi, List.append_assoc]
    rfl
  · rw [Marks.foldl_set_perm hperm, List.foldl_append, ← h.marks, hmarks]

theorem expand_spec {m₀ : Marks} (nUbatch fuel : ℕ) {st : EqualState}
    (h : EqualInv b m₀ st) (hne : st.cursors ≠ [])
    (hgood : (∀ c ∈ st.cursors, c.rest ≠ []) ∨ ∀ c ∈ st.cursors, c.idxs ≠ [])
    (hfuel : ∀ c ∈ st.cursors, c.rest.length < fuel) :
    ∃ st', expand nUbatch fuel st = some st' ∧ EqualInv b m₀ st' ∧
      st'.cursors.map SetCursor.set = st.cursors.map SetCursor.set ∧
      ∀ c ∈ st'.cursors, c.idxs ≠ [] := by
  induction fuel generalizing st with
  | zero =>
    obtain ⟨c, cs, hcs⟩ := List.exists_cons_of_ne_nil hne
    exact absurd (hfuel c (by rw [hcs]; exact List.mem_cons_self)) (Nat.not_lt_zero _)
  | succ fuel ih =>
    simp only [expand]
    by_cases hstop : (st.cursors.any fun c => c.rest.isEmpty) = true
    · rw [if_pos hstop]
      refine ⟨st, rfl, h, rfl, hgood.resolve_left fun hall => ?_⟩
      obtain ⟨c, hc, hempty⟩ := List.any_eq_true.mp hstop
      exact hall c hc (List.isEmpty_iff.mp hempty)
    · rw [if_neg hstop]
      have hrest : ∀ c ∈ st.cursors, c.rest ≠ [] := fun c hc hnil =>
        hstop (List.any_eq_true.mpr ⟨c, hc, List.isEmpty_iff.mpr hnil⟩)
      have hnext := h.advance hrest
      obtain ⟨hall, -⟩ := advanceAll_spec st.marks hrest
      have hidxs : ∀ c ∈ (advanceAll st.marks st.cursors).cursors, c.idxs ≠ [] := by
        intro c hc
        obtain ⟨d, -, -, i, -, hidxs⟩ := exists_advanced hall hc
        rw [hidxs]
        exact List.append_ne_nil_of_right_ne_nil _ (List.cons_ne_nil i [])
      split_ifs with hfull
      · exact ⟨_, rfl, hnext, map_set_of_advanced hall, hidxs⟩
      · have hne' : (advanceAll st.marks st.cursors).cursors ≠ [] := by
          intro hnil
          have := hall.length_eq
          rw [hnil] at this
          exact hne (List.length_eq_zero_iff.mp this)
        have hless : ∀ c ∈ (advanceAll st.marks st.cursors).cursors, c.rest.length < fuel := by
          intro c' hc'
          obtain ⟨c, hc, -, i, hi, -⟩ := exists_advanced hall hc'
          have := hfuel c hc
          rw [hi, List.length_cons] at this
          omega
        obtain ⟨st', hrun, hinv, hsets, hidxs'⟩ := ih hnext hne' (.inr hidxs) hless
        exact ⟨st', hrun, hinv, hsets.trans (map_set_of_advanced hall), hidxs'⟩

/-! ## Equal splits: the tails -/

theorem returnAll_eq (m : Marks) (cs : List SetCursor) :
    returnAll m cs = (cs.flatMap SetCursor.idxs).foldl Marks.unset m :=
  (List.foldl_flatMap ..).symm

theorem EqualInv.keepFront {m₀ m : Marks} {ks ds : List SetCursor}
    (h : EqualInv b m₀ ⟨m, ks ++ ds⟩) : EqualInv b m₀ ⟨returnAll m ds, ks⟩ where
  cursor c hc := h.cursor c (List.mem_append_left ds hc)
  sets := by
    have hsets := h.sets
    rw [List.map_append] at hsets
    exact (List.nodup_append.mp hsets).1
  marks := by
    have hnd := h.nodup
    have hmarks := h.marks
    simp only [List.flatMap_append] at hnd hmarks
    rw [returnAll_eq, hmarks]
    refine Marks.foldl_unset_set hnd fun j hj => ?_
    obtain ⟨d, hd, hj⟩ := List.mem_flatMap.mp hj
    exact (h.idxs_sub (List.mem_append_right ks hd) hj).2.2

theorem EqualInv.finishSet {m₀ m : Marks} {c : SetCursor} {cs : List SetCursor}
    (h : EqualInv b m₀ ⟨m, c :: cs⟩) :
    EqualInv b m₀ ⟨(finishSet m c).1, (finishSet m c).2 :: cs⟩ where
  cursor d hd := by
    rcases List.mem_cons.mp hd with rfl | hd
    · exact (List.append_nil _).trans (h.cursor c List.mem_cons_self)
    · exact h.cursor d (List.mem_cons_of_mem c hd)
  sets := h.sets
  marks := by
    have hmarks := h.marks
    simp only [List.flatMap_cons] at hmarks ⊢
    rw [BatchAllocr.finishSet, hmarks, ← List.foldl_append]
    refine Marks.foldl_set_perm ?_ m₀
    rw [List.append_assoc, List.append_assoc]
    exact List.perm_append_comm.append_left c.idxs

theorem EqualInv.popBack {m₀ m : Marks} {c : SetCursor} {cs : List SetCursor}
    (h : EqualInv b m₀ ⟨m, c :: cs⟩) (hne : c.idxs ≠ []) :
    EqualInv b m₀ ⟨(popBack (m, c)).1, (popBack (m, c)).2 :: cs⟩ ∧
      (popBack (m, c)).2.idxs.length + 1 = c.idxs.length ∧ (popBack (m, c)).2.set = c.set := by
  obtain ⟨l, i, hl⟩ : ∃ l i, c.idxs = l ++ [i] :=
    ⟨_, _, (List.dropLast_append_getLast hne).symm⟩
  have hpop : BatchAllocr.popBack (m, c) = (m.unset i, ⟨c.set, l, i :: c.rest⟩) := by
    simp [BatchAllocr.popBack, hl]
  rw [hpop]
  refine ⟨⟨fun d hd => ?_, h.sets, ?_⟩, by simp [hl], rfl⟩
  · rcases List.mem_cons.mp hd with rfl | hd
    · rw [← h.cursor c List.mem_cons_self, hl, List.append_assoc]
      rfl
    · exact h.cursor d (List.mem_cons_of_mem c hd)
  · have hperm : ((c :: cs).flatMap SetCursor.idxs).Perm
        ((l ++ cs.flatMap SetCursor.idxs) ++ [i]) := by
      rw [List.flatMap_cons, hl, List.append_assoc, List.append_assoc]
      exact List.perm_append_comm.append_left l
    have hnd := hperm.nodup_iff.mp h.nodup
    have hfresh : ∀ j ∈ [i], j ∉ m₀.used := by
      intro j hj
      rw [List.mem_singleton.mp hj]
      refine (h.idxs_sub List.mem_cons_self (c := c) ?_).2.2
      rw [hl]
      exact List.mem_append_right l List.mem_cons_self
    have hmarks := h.marks
    simp only at hmarks
    rw [hmarks, Marks.foldl_set_perm hperm]
    exact Marks.foldl_unset_set hnd hfresh

theorem EqualInv.popBack_iterate {m₀ : Marks} (n : ℕ) {m : Marks} {c : SetCursor}
    {cs : List SetCursor} (h : EqualInv b m₀ ⟨m, c :: cs⟩) (hn : n < c.idxs.length) :
    EqualInv b m₀ ⟨(BatchAllocr.popBack^[n] (m, c)).1, (BatchAllocr.popBack^[n] (m, c)).2 :: cs⟩ ∧
      (BatchAllocr.popBack^[n] (m, c)).2.idxs ≠ [] ∧
      (BatchAllocr.popBack^[n] (m, c)).2.set = c.set := by
  induction n generalizing m c with
  | zero => exact ⟨h, List.ne_nil_of_length_pos hn, rfl⟩
  | succ n ih =>
    obtain ⟨hpop, hlen, hset⟩ := h.popBack (List.ne_nil_of_length_pos (by omega))
    obtain ⟨hinv, hne, hset'⟩ := ih hpop (by omega)
    rw [Function.iterate_succ_apply]
    exact ⟨hinv, hne, hset'.trans hset⟩

theorem EqualInv.keepTail {m₀ : Marks} {st : EqualState} {nUbatch nKeepTail : ℕ}
    (h : EqualInv b m₀ st) (hlt : nKeepTail < nUbatch) (hne : st.cursors ≠ [])
    (hidxs : ∀ c ∈ st.cursors, c.idxs ≠ []) :
    EqualInv b m₀ (keepTail nUbatch nKeepTail st) ∧ (keepTail nUbatch nKeepTail st).cursors ≠ [] ∧
      (∀ c ∈ (keepTail nUbatch nKeepTail st).cursors, c.idxs ≠ []) ∧
      ((keepTail nUbatch nKeepTail st).cursors.map SetCursor.set).Sublist
        (st.cursors.map SetCursor.set) := by
  obtain ⟨m, cursors⟩ := st
  obtain ⟨c, cs, rfl⟩ := List.exists_cons_of_ne_nil hne
  simp only [BatchAllocr.keepTail]
  split_ifs with hzero
  · -- the first set violates the constraint
    have hfirst : tailOk nKeepTail c = false := by
      by_contra hok
      rw [Bool.not_eq_false] at hok
      rw [List.takeWhile_cons_of_pos hok] at hzero
      simp at hzero
    simp only [tailOk, Bool.or_eq_false_iff, decide_eq_false_iff_not, not_le] at hfirst
    have hc := hidxs c List.mem_cons_self
    have hresolved : EqualInv b m₀ ⟨(resolveFirst nUbatch nKeepTail m c).1,
        (resolveFirst nUbatch nKeepTail m c).2 :: cs⟩ ∧
        (resolveFirst nUbatch nKeepTail m c).2.idxs ≠ [] ∧
        (resolveFirst nUbatch nKeepTail m c).2.set = c.set := by
      rw [resolveFirst]
      split_ifs with hfits
      · exact ⟨h.finishSet, List.append_ne_nil_of_left_ne_nil hc c.rest, rfl⟩
      · exact h.popBack_iterate _ (by omega)
    obtain ⟨hinv, hne', hset⟩ := hresolved
    refine ⟨EqualInv.keepFront (show EqualInv b m₀ ⟨_, [_] ++ cs⟩ from hinv), List.cons_ne_nil _ _, ?_, ?_⟩
    · intro d hd
      rw [List.mem_singleton.mp hd]
      exact hne'
    · rw [List.map_cons, List.map_nil, hset, List.map_cons]
      exact (List.nil_sublist _).cons_cons c.set
  · have hsplit : (c :: cs).take ((c :: cs).takeWhile (tailOk nKeepTail)).length ++
        (c :: cs).drop ((c :: cs).takeWhile (tailOk nKeepTail)).length = c :: cs :=
      List.take_append_drop _ _
    refine ⟨EqualInv.keepFront (hsplit.symm ▸ h), ?_, fun d hd => hidxs d (List.mem_of_mem_take hd), ?_⟩
    · rw [← List.length_pos_iff, List.length_take, List.length_cons]
      omega
    · exact (List.take_sublist _ _).map _

/-! ## One call -/

theorem nodup_of_disjoint {sets : List (Finset ℕ)} (hsets : sets.Pairwise fun s t => s ∩ t = ∅)
    (hne : ∀ set ∈ sets, set ≠ ∅) : sets.Nodup := by
  refine hsets.imp_of_mem fun hs _ hdisj heq => hne _ hs ?_
  rw [← heq, Finset.inter_self] at hdisj
  exact hdisj

theorem splitEqual_spec {st : SplitState} {nUbatch nKeepTail : ℕ} {sequential : Bool}
    (hne : ∀ i < b.nTokens, b.seqSetAt i ≠ ∅) (hpre : SetPrefix b st.marks.used)
    (hcpl : sequential = true → b.hasCpl = false) (hkeep : 0 < nKeepTail → nKeepTail < nUbatch)
    (hsome : ∃ i < b.nTokens, i ∉ st.marks.used) :
    ∃ eq : EqualState, b.splitEqual st nUbatch sequential nKeepTail =
        some (b.emit eq.marks st.outIds (eq.cursors.flatMap SetCursor.idxs) eq.cursors.length true) ∧
      EqualInv b st.marks eq ∧ eq.cursors ≠ [] ∧ (∀ c ∈ eq.cursors, c.idxs ≠ []) ∧
      (eq.cursors.map SetCursor.set).Sublist
        (b.pickSets st.marks.used nUbatch sequential (List.range b.nTokens) [] (-1)) := by
  obtain ⟨i, hi, hunused⟩ := hsome
  have hpick : b.pickSets st.marks.used nUbatch sequential (List.range b.nTokens) [] (-1) ≠ [] :=
    pickSets_ne_nil ⟨i, List.mem_range.mpr hi, hunused⟩ (-1)
  obtain ⟨-, hdisj, hfrom⟩ := pickSets_spec (b := b) (List.range b.nTokens) List.Pairwise.nil (-1)
  have hpicked := fun set hset => (hfrom set hset).resolve_left List.not_mem_nil
  rw [splitEqual, if_neg (by simpa using hcpl), if_neg hpick]
  have hstart := EqualInv.start hpre (nodup_of_disjoint hdisj fun set hset => by
    obtain ⟨k, hk, -, rfl⟩ := hpicked set hset
    exact hne k (List.mem_range.mp hk))
  have hrest : ∀ c ∈ (b.pickSets st.marks.used nUbatch sequential (List.range b.nTokens) [] (-1)).map
      (b.startCursor st.marks.used), c.rest ≠ [] ∧ c.rest.length < b.nTokens + 1 := by
    intro c hc
    obtain ⟨set, hset, rfl⟩ := List.mem_map.mp hc
    obtain ⟨k, hk, hku, hkset⟩ := hpicked set hset
    rw [startCursor_rest hpre]
    refine ⟨List.ne_nil_of_mem (mem_unusedOf.2 ⟨List.mem_range.mp hk, hkset, hku⟩), ?_⟩
    have hlen : (b.unusedOf st.marks.used set).length ≤ (List.range b.nTokens).length :=
      (List.length_filter_le _ _).trans (List.length_filter_le _ _)
    rw [List.length_range] at hlen
    omega
  obtain ⟨eq, hrun, hinv, hsets, hidxs⟩ := expand_spec nUbatch (b.nTokens + 1) hstart
    (by simpa using hpick) (.inl fun c hc => (hrest c hc).1) fun c hc => (hrest c hc).2
  have hsets' : eq.cursors.map SetCursor.set =
      b.pickSets st.marks.used nUbatch sequential (List.range b.nTokens) [] (-1) := by
    rw [hsets, List.map_map]
    exact List.map_id _
  have hcursors : eq.cursors ≠ [] := fun hnil => hpick (by rw [← hsets', hnil]; rfl)
  rw [hrun, Option.bind_some]
  by_cases htail : 0 < nKeepTail
  · obtain ⟨hinv', hne', hidxs', hsub⟩ := hinv.keepTail (hkeep htail) hcursors hidxs
    rw [if_pos htail, if_pos (hkeep htail)]
    exact ⟨_, rfl, hinv', hne', hidxs', hsets' ▸ hsub⟩
  · rw [if_neg htail]
    exact ⟨eq, rfl, hinv, hcursors, hidxs, hsets' ▸ List.Sublist.refl _⟩

end BatchAllocr

/-- The calls that the interface allows: `n_ubatch` is positive, sequential splits only
without coupled sequences, and the tail is shorter than an ubatch. -/
def SplitCall.Ok {E : Type*} (b : BatchAllocr E) : SplitCall → Prop
  | .simple nUbatch => 0 < nUbatch
  | .equal nUbatch sequential nKeepTail =>
    0 < nUbatch ∧ (sequential = true → b.hasCpl = false) ∧ (0 < nKeepTail → nKeepTail < nUbatch)
  | .seq nUbatch => 0 < nUbatch

/-- The part of `Ok` that splitting at all depends on. -/
def SplitCall.Sane {E : Type*} (b : BatchAllocr E) : SplitCall → Prop
  | .equal nUbatch sequential nKeepTail =>
    (sequential = true → b.hasCpl = false) ∧ (0 < nKeepTail → nKeepTail < nUbatch)
  | _ => True

theorem SplitCall.Ok.sane {E : Type*} {b : BatchAllocr E} {call : SplitCall} (h : call.Ok b) :
    call.Sane b := by
  cases call with
  | simple => trivial
  | equal => exact h.2
  | seq => trivial

/-- The window of a simple split holds no used index. -/
def SplitCall.Fresh {E : Type*} (b : BatchAllocr E) (used : Finset ℕ) : SplitCall → Prop
  | .simple nUbatch => ∀ cur, b.firstUnused used = some cur →
      ∀ i ∈ b.simpleIdxs cur nUbatch, i ∉ used
  | _ => True

namespace BatchAllocr

variable {E : Type*} {b : BatchAllocr E}

/-- The result of a call that is not at the end of the batch. -/
structure Emits (b : BatchAllocr E) (st : SplitState) (r : SplitState × Ubatch E)
    (idxs : List ℕ) : Prop where
  ne_nil : idxs ≠ []
  draw : Draw b st.marks r.1.marks idxs
  outIds : r.1.outIds = st.outIds ++ idxs.filter b.isOutput
  ubatch : ∃ nSeqs equalSeqs, r.2 = b.ubatchAdd idxs nSeqs equalSeqs

theorem split_done {st : SplitState} {call : SplitCall} (hall : ∀ i < b.nTokens, i ∈ st.marks.used) :
    b.split st call = some (st, Ubatch.empty) := by
  have hnone := (firstUnused_eq_none (b := b) st.marks.used).mpr hall
  cases call with
  | simple nUbatch => rw [split, splitSimple, hnone]
  | seq nUbatch => rw [split, splitSeq, hnone]
  | equal nUbatch sequential nKeepTail =>
    rw [split, splitEqual, pickSets_eq_nil fun i hi => hall i (List.mem_range.mp hi)]
    simp

theorem split_emits (hne : ∀ i < b.nTokens, b.seqSetAt i ≠ ∅) {st : SplitState} {call : SplitCall}
    (hpre : SetPrefix b st.marks.used) (hok : call.Sane b) (hfresh : call.Fresh b st.marks.used)
    (hsome : ∃ i < b.nTokens, i ∉ st.marks.used) :
    ∃ r idxs, b.split st call = some r ∧ Emits b st r idxs := by
  have hcur : ∃ cur, b.firstUnused st.marks.used = some cur := by
    rw [← Option.ne_none_iff_exists', ne_eq, firstUnused_eq_none]
    rintro hall
    obtain ⟨i, hi, hunused⟩ := hsome
    exact hunused (hall i hi)
  cases call with
  | simple nUbatch =>
    obtain ⟨cur, hcur⟩ := hcur
    refine ⟨_, b.simpleIdxs cur nUbatch, by rw [split, splitSimple, hcur], simpleIdxs_ne_nil hcur,
      simple_draw hcur (hfresh cur hcur) hpre, rfl, _, _, rfl⟩
  | seq nUbatch =>
    obtain ⟨cur, hcur⟩ := hcur
    exact ⟨_, _, by rw [split, splitSeq, hcur], List.ne_nil_of_mem (seqTake_first nUbatch hcur),
      seq_draw nUbatch hcur hpre, rfl, _, _, rfl⟩
  | equal nUbatch sequential nKeepTail =>
    obtain ⟨hcpl, hkeep⟩ := hok
    obtain ⟨eq, hrun, hinv, hcursors, hidxs, -⟩ := splitEqual_spec hne hpre hcpl hkeep hsome
    obtain ⟨c, cs, hcs⟩ := List.exists_cons_of_ne_nil hcursors
    refine ⟨_, _, hrun, ?_, hinv.draw hpre, rfl, _, _, rfl⟩
    rw [hcs, List.flatMap_cons]
    exact List.append_ne_nil_of_left_ne_nil (hidxs c (by rw [hcs]; exact List.mem_cons_self)) _

end BatchAllocr
end RocmFpx
